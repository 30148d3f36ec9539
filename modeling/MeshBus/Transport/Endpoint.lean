import MeshBus.Transport.Socket

/-!
# Transport.Endpoint

`TcpEndpoint` of `mb-transport`: the allowlist, the counter of link ids, the table of links, the one
event queue, and any number of connections whose `attach_stream` and `run_link` tasks run
interleaved. What the peers send is arbitrary.

A step names what happened. `send` and `close` look the link up and put a command into its queue;
since the lookup may be long past when the queue takes the command, a command may be submitted to
any connection that is served. `shutdown` aborts the tasks the endpoint knows of, which need not be
all of them: a `connect` in flight goes on. The receiver of the event queue may be dropped at any
time; from then on every `events.send` fails.
-/

namespace MeshBus
namespace Transport

open Wire MeshBus.Runtime

/-- One connection; `alive` is false once its task was aborted. -/
structure Stream where
  expected : Option NodeId
  socket : Socket
  alive : Bool

structure Endpoint where
  localNode : NodeId
  allowedPeers : OrdSet NodeId
  nextLink : Nat
  /-- The sender of a link is the connection it belongs to. -/
  links : OrdMap LinkId Nat
  linkCount : Nat
  /-- The event queue, and what the runtime has received from it. -/
  queue : List LinkEvent
  received : List LinkEvent
  /-- The receiver was dropped; what is in the queue is not received any more. -/
  closed : Bool
  streams : List Stream
  shutDown : Bool

inductive EndpointStep where
  | allowPeer (peer : NodeId)
  | connect (expectedPeer : NodeId)
  | accept
  /-- `attach_stream` reads the allowlist and enters the link. -/
  | check (i : Nat)
  /-- Any other step of the task of a connection. -/
  | progress (i : Nat) (step : AttachStep)
  | submit (i : Nat) (command : LinkCommand)
  | recv
  | dropReceiver
  | shutdown (aborted : List Nat)

variable {w : Worker} {k : Socket} {self : Endpoint} {i : Nat} {stream : Stream}

namespace Endpoint

def bind (localNode : NodeId) (allowedPeers : OrdSet NodeId) : Endpoint where
  localNode := localNode
  allowedPeers := allowedPeers
  nextLink := 1
  links := ∅
  linkCount := 0
  queue := []
  received := []
  closed := false
  streams := []
  shutDown := false

/-- `fetch_update` with `checked_add(1)`: the old value, or nothing at the end of the range. -/
def allocate (self : Endpoint) : Option LinkId :=
  if self.nextLink + 1 ≤ u64Max then some self.nextLink else none

def setSocket (self : Endpoint) (i : Nat) (stream : Stream) (k : Socket) : Endpoint :=
  { self with streams := self.streams.set i { stream with socket := k } }

/-- A new connection on which `attach_stream` begins. -/
def openStream (self : Endpoint) (expected : Option NodeId) : Endpoint :=
  { self with streams := self.streams ++ [⟨expected, .start self.localNode, true⟩] }

/-- A connection whose task was not aborted. -/
def stream? (self : Endpoint) (i : Nat) : Option Stream := self.streams[i]?.filter Stream.alive

def check (prost : Bytes → Option LinkHello) (self : Endpoint) (i : Nat) : Option Endpoint := do
  let stream ← self.stream? i
  let k ← stream.socket.step prost stream.expected (.check self.allowedPeers self.allocate)
  match k.attachment with
  | .serving w =>
    let links := self.links.insert w.link i
    some
      { self.setSocket i stream k with
        nextLink := self.nextLink + 1
        links := links
        linkCount := links.size }
  | _ => some (self.setSocket i stream k)

def progress (prost : Bytes → Option LinkHello) (self : Endpoint) (i : Nat) (s : AttachStep) :
    Option Endpoint := do
  let stream ← self.stream? i
  let k ← stream.socket.step prost stream.expected s
  match s, stream.socket.attachment with
  | .check _ _, _ | .submit _, _ => none
  | .work .emitted, .serving w =>
    if self.closed = false ∧ self.queue.length < eventQueueCapacity then
      some { self.setSocket i stream k with queue := self.queue ++ w.event?.toList }
    else none
  | .work .closed, _ => if self.closed then some (self.setSocket i stream k) else none
  | .work .remove, .serving w =>
    let links := self.links.erase w.link
    some { self.setSocket i stream k with links := links, linkCount := links.size }
  | _, _ => some (self.setSocket i stream k)

def step (prost : Bytes → Option LinkHello) (self : Endpoint) : EndpointStep → Option Endpoint
  | .allowPeer peer => some { self with allowedPeers := self.allowedPeers.insert peer }
  | .connect expectedPeer =>
    -- otherwise `Err(PeerNotAllowed)`
    if expectedPeer ∈ self.allowedPeers then some (self.openStream (some expectedPeer))
    else some self
  | .accept => if self.shutDown then none else some (self.openStream none)
  | .check i => self.check prost i
  | .progress i s => self.progress prost i s
  | .submit i command => do
    let stream ← self.stream? i
    let k ← stream.socket.step prost stream.expected (.submit command)
    some (self.setSocket i stream k)
  | .recv =>
    match self.closed, self.queue with
    | false, event :: queue =>
      some { self with queue := queue, received := self.received ++ [event] }
    | _, _ => none
  | .dropReceiver => some { self with closed := true }
  | .shutdown aborted =>
    some
      { self with
        streams := self.streams.mapIdx fun i stream =>
          if i ∈ aborted then { stream with alive := false } else stream
        links := ∅
        linkCount := 0
        shutDown := true }

def run (prost : Bytes → Option LinkHello) (self : Endpoint) (steps : List EndpointStep) :
    Option Endpoint :=
  steps.foldlM (step prost) self

/-- All events in the order in which the queue took them. -/
def events (self : Endpoint) : List LinkEvent := self.received ++ self.queue

end Endpoint

deriving instance DecidableEq for LinkEvent

def linkOf : LinkEvent → LinkId
  | .up link _ | .down link | .frame link _ | .sent link _ _ _ => link

def about (link : LinkId) (event : LinkEvent) : Bool := linkOf event = link

/-! ## The task of a link -/

theorem about_of_isTraffic {link : LinkId} {event : LinkEvent} (h : isTraffic link event = true) :
    about link event = true := by
  cases event <;> simp_all [isTraffic, about, linkOf]

namespace Worker

variable {w w' : Worker} {h h' : History} {s : WorkerStep}

theorem Acts.registered (acts : Acts w h s w' h') (hs : s ≠ .remove) :
    w'.registered = w.registered := by
  cases acts <;> simp_all [Worker.registered]

theorem Acts.removed_registered (acts : Acts w h .remove w' h') :
    w.registered = true ∧ w'.registered = false := by
  cases acts <;> simp_all [Worker.registered]

/-- While the queue takes events, a task is gone only after its `Down`. -/
theorem Acts.down (acts : Acts w h s w' h') (hs : s ≠ .closed) (hphase : w'.phase = .gone) :
    .down w.link ∈ h'.handed := by
  cases acts <;> simp_all

theorem Acts.handed_eq (acts : Acts w h s w' h') (hs : s ≠ .emitted) : h'.handed = h.handed := by
  cases acts <;> first | rfl | exact absurd rfl hs

/-- A task speaks of its own link only. -/
theorem Inv.event_about {me peer : NodeId} {hello : WireFrame} (inv : Inv me peer hello w h)
    {event : LinkEvent} (he : event ∈ w.event?) : about w.link event = true := by
  have hevents := inv.events
  simp only [event?] at he
  split at he
  · cases he
    simp [about, linkOf]
  · rename_i hphase
    cases he
    simp only [Lifecycle, hphase] at hevents
    exact about_of_isTraffic hevents.1
  · cases he
    simp [about, linkOf]
  all_goals cases he

end Worker

theorem Worker.Lifecycle.shape {peer : NodeId} {handed : List LinkEvent}
    (h : w.Lifecycle peer handed) :
    handed = [] ∨ ∃ traffic, (∀ e ∈ traffic, isTraffic w.link e = true) ∧
      (handed = .up w.link peer :: traffic ∨
        handed = .up w.link peer :: (traffic ++ [.down w.link])) := by
  simp only [Worker.Lifecycle] at h
  split at h
  · exact .inl h.2
  · exact .inl h
  · exact .inl h
  · obtain ⟨-, traffic, heq, hall⟩ := h
    exact .inr ⟨traffic, hall, .inl heq⟩
  · obtain ⟨traffic, last, heq, rfl | rfl, hall⟩ := h
    · exact .inr ⟨traffic, hall, .inl (by rw [heq, List.append_nil])⟩
    · exact .inr ⟨traffic, hall, .inr heq⟩
  · obtain ⟨traffic, heq, hall⟩ := h
    exact .inr ⟨traffic, hall, .inl heq⟩

/-- The worker of a socket that is served, and the history. -/
def Socket.worker? (k : Socket) : Option (Worker × History) :=
  match k.attachment with
  | .serving w => some (w, k.history)
  | _ => none

theorem Socket.worker?_eq_some {h : History} : k.worker? = some (w, h) ↔ k = ⟨.serving w, h⟩ := by
  obtain ⟨a, hist⟩ := k
  cases a <;> simp [worker?]

namespace Socket

variable {prost : Bytes → Option LinkHello} {expected : Option NodeId}

theorem step_served {h : History} {s : AttachStep}
    (hstep : Socket.step prost expected ⟨.serving w, h⟩ s = some k) :
    (∃ command, s = .submit command ∧
      k = ⟨.serving { w with commands := w.commands ++ [command] },
        h.note (.serving w) (.submit command)⟩) ∨
    ∃ ws w', s = .work ws ∧ Worker.Acts w h ws w' (h.noteWork w ws) ∧
      k = ⟨.serving w', h.noteWork w ws⟩ := by
  simp only [Socket.step, Option.map_eq_some_iff] at hstep
  obtain ⟨a, hstep, rfl⟩ := hstep
  cases s with
  | submit command =>
    cases Attachment.step_submit hstep
    exact .inl ⟨command, rfl, rfl⟩
  | work ws =>
    obtain ⟨w', hw', rfl⟩ := Option.map_eq_some_iff.mp hstep
    exact .inr ⟨ws, w', rfl, Worker.step_acts hw' h, rfl⟩
  | _ => cases hstep

/-- Only the check makes a link of a socket. -/
theorem step_unserved {k k' : Socket} {s : AttachStep}
    (hstep : k.step prost expected s = some k') (hk : k.worker? = none)
    (hs : ∀ allowedPeers nextLink, s ≠ .check allowedPeers nextLink) : k'.worker? = none := by
  obtain ⟨a, h⟩ := k
  simp only [Socket.step, Option.map_eq_some_iff] at hstep
  obtain ⟨a', hstep, rfl⟩ := hstep
  cases a with
  | serving w => cases hk
  | greeting rest =>
    cases s with
    | wrote n =>
      simp only [Attachment.step] at hstep
      split at hstep
      · cases hstep
        rfl
      · split at hstep <;> cases hstep
        rfl
    | fail =>
      cases hstep
      rfl
    | _ => cases hstep
  | decoding buffered =>
    cases s with
    | decode =>
      simp only [Attachment.step] at hstep
      split at hstep
      · cases hstep
        rfl
      · cases hstep
        rfl
      · split at hstep <;> cases hstep <;> rfl
    | _ => cases hstep
  | reading buffered =>
    cases s with
    | read bytes =>
      simp only [Attachment.step] at hstep
      split at hstep <;> cases hstep <;> rfl
    | fail =>
      cases hstep
      rfl
    | _ => cases hstep
  | checking peer buffered =>
    cases s with
    | check allowedPeers nextLink => exact absurd rfl (hs allowedPeers nextLink)
    | _ => cases hstep
  | failed error buffered => cases s <;> cases hstep

theorem step_check {k k' : Socket} {allowedPeers : OrdSet NodeId} {nextLink : Option LinkId}
    (hstep : k.step prost expected (.check allowedPeers nextLink) = some k') :
    (∃ peer buffered, k.attachment = .checking peer buffered) ∧ k'.history = k.history ∧
      (k'.worker? = none ∨ ∃ link peer buffered, nextLink = some link ∧
        k' = ⟨.serving (.attach link peer buffered), k.history⟩) := by
  obtain ⟨a, h⟩ := k
  simp only [Socket.step, Option.map_eq_some_iff] at hstep
  obtain ⟨a', hstep, rfl⟩ := hstep
  cases a with
  | checking peer buffered =>
    refine ⟨⟨peer, buffered, rfl⟩, rfl, ?_⟩
    simp only [Attachment.step] at hstep
    split at hstep
    · cases hstep
      exact .inl rfl
    · split at hstep
      · cases hstep
        exact .inl rfl
      · rename_i link
        cases hstep
        exact .inr ⟨link, peer, buffered, rfl, rfl⟩
  | _ => cases hstep

end Socket

namespace Endpoint

variable {prost : Bytes → Option LinkHello}

def worker? (self : Endpoint) (i : Nat) : Option (Worker × History) :=
  self.streams[i]?.bind fun stream => stream.socket.worker?

structure Inv (prost : Bytes → Option LinkHello) (ep : Endpoint) : Prop where
  sockets : ∀ (i : Nat) (stream : Stream), ep.streams[i]? = some stream →
    stream.socket.Inv prost stream.expected (· ∈ ep.allowedPeers) ep.localNode
  bounded : ∀ i w h, ep.worker? i = some (w, h) → 0 < w.link ∧ w.link < ep.nextLink
  positive : 0 < ep.nextLink
  distinct : ∀ i j v w h h', ep.worker? i = some (v, h) → ep.worker? j = some (w, h') →
    v.link = w.link → i = j
  handed : ∀ i w h, ep.worker? i = some (w, h) → ep.events.filter (about w.link) = h.handed
  silent : ∀ link, (∀ i w h, ep.worker? i = some (w, h) → w.link ≠ link) →
    ep.events.filter (about link) = []
  count : ep.linkCount = ep.links.size
  table : ∀ (link : LinkId) (i : Nat), ep.links[link]? = some i →
    ∃ w h, ep.worker? i = some (w, h) ∧ w.link = link ∧ w.registered = true
  known : ep.shutDown = false → ∀ i w h, ep.worker? i = some (w, h) → w.registered = true →
    ep.links[w.link]? = some i
  down : ep.closed = false → ∀ i w h, ep.worker? i = some (w, h) → w.phase = .gone →
    .down w.link ∈ h.handed

theorem inv_bind (localNode : NodeId) (allowedPeers : OrdSet NodeId) :
    Inv prost (bind localNode allowedPeers) where
  sockets _ _ h := by cases h
  bounded _ _ _ h := by cases h
  positive := Nat.one_pos
  distinct _ _ _ _ _ _ h := by cases h
  handed _ _ _ h := by cases h
  silent _ _ := rfl
  count := by simp [bind]
  table _ _ h := by simp [bind] at h
  known _ _ _ _ h := by cases h
  down _ _ _ _ h := by cases h

theorem worker?_eq (h : self.streams[i]? = some stream) :
    self.worker? i = stream.socket.worker? := by
  simp only [worker?, h, Option.bind_some]

theorem stream?_eq_some (h : self.stream? i = some stream) : self.streams[i]? = some stream :=
  (Option.filter_eq_some_iff.mp h).1

theorem getElem?_setSocket (h : self.streams[i]? = some stream) (j : Nat) :
    (self.setSocket i stream k).streams[j]? =
      if i = j then some { stream with socket := k } else self.streams[j]? := by
  have hlt : i < self.streams.length := (List.getElem?_eq_some_iff.mp h).1
  simp only [setSocket, List.getElem?_set, hlt, if_true]

theorem worker?_setSocket (h : self.streams[i]? = some stream) (j : Nat) :
    (self.setSocket i stream k).worker? j = if i = j then k.worker? else self.worker? j := by
  simp only [worker?, getElem?_setSocket h]
  split <;> rfl

/-- Replacing a socket keeps the sockets well. -/
theorem Inv.sockets_set (inv : Inv prost self) (hstream : self.streams[i]? = some stream)
    (hk : k.Inv prost stream.expected (· ∈ self.allowedPeers) self.localNode) {j : Nat}
    {other : Stream} (hj : (self.setSocket i stream k).streams[j]? = some other) :
    other.socket.Inv prost other.expected (· ∈ self.allowedPeers) self.localNode := by
  rw [getElem?_setSocket hstream] at hj
  split at hj
  · cases hj
    exact hk
  · exact inv.sockets j other hj

/-- A step that leaves the workers, the events and the links alone. -/
theorem Inv.same {self self' : Endpoint} (inv : Inv prost self)
    (hsockets : ∀ (i : Nat) (stream : Stream), self'.streams[i]? = some stream →
      stream.socket.Inv prost stream.expected (· ∈ self'.allowedPeers) self'.localNode)
    (hworker : ∀ i, self'.worker? i = self.worker? i) (hnext : self'.nextLink = self.nextLink)
    (hevents : self'.events = self.events) (hlinks : self'.links = self.links)
    (hcount : self'.linkCount = self.linkCount) (hshut : self'.shutDown = self.shutDown)
    (hclosed : self'.closed = false → self.closed = false) : Inv prost self' where
  sockets := hsockets
  bounded := by simpa only [hworker, hnext] using inv.bounded
  positive := hnext ▸ inv.positive
  distinct := by simpa only [hworker] using inv.distinct
  handed := by simpa only [hworker, hevents] using inv.handed
  silent := by simpa only [hworker, hevents] using inv.silent
  count := by rw [hcount, hlinks, inv.count]
  table := by simpa only [hworker, hlinks] using inv.table
  known := by simpa only [hworker, hlinks, hshut] using inv.known
  down hopen := by simpa only [hworker] using inv.down (hclosed hopen)

theorem filter_about_ne {link link' : LinkId} {events : List LinkEvent}
    (h : ∀ e ∈ events, about link e = true) (hne : link' ≠ link) :
    events.filter (about link') = [] := by
  rw [List.filter_eq_nil_iff]
  intro e he
  have habout := h e he
  simp only [about, decide_eq_true_eq] at habout ⊢
  exact fun heq => hne (heq.symm.trans habout)

/-- The table is kept, or loses the entry of a worker that is not registered any more. -/
theorem Inv.entries {w w' : Worker} {h : History} {links : OrdMap LinkId Nat}
    (inv : Inv prost self) (hwas : self.worker? i = some (w, h))
    (hlinks : (links = self.links ∧ w'.registered = w.registered) ∨
      (links = self.links.erase w.link ∧ w'.registered = false)) (link : LinkId) (j : Nat) :
    links[link]? = some j ↔
      self.links[link]? = some j ∧ (link = w.link → w'.registered = true) := by
  rcases hlinks with ⟨rfl, hreg⟩ | ⟨rfl, hreg⟩
  · refine ⟨fun hj => ⟨hj, ?_⟩, And.left⟩
    rintro rfl
    obtain ⟨v, hist, hv, hvlink, hvreg⟩ := inv.table _ j hj
    cases inv.distinct i j w v h hist hwas hv hvlink.symm
    cases hwas.symm.trans hv
    exact hreg.trans hvreg
  · rw [OrdMap.get_erase, hreg]
    split
    · rename_i heq
      simp [heq]
    · rename_i hne
      simp [Ne.symm hne]

/-- A step of a served connection: it hands over events of its own link, and its entry in the table
goes if it is not registered any more. -/
theorem Inv.set_worker {w w' : Worker} {h h' : History} (new : List LinkEvent)
    (links : OrdMap LinkId Nat) (inv : Inv prost self) (hstream : self.streams[i]? = some stream)
    (hold : stream.socket = ⟨.serving w, h⟩)
    (hsocket : Socket.Inv prost stream.expected (· ∈ self.allowedPeers) self.localNode
      ⟨.serving w', h'⟩) (hlink : w'.link = w.link) (hhanded : h'.handed = h.handed ++ new)
    (habout : ∀ e ∈ new, about w.link e = true)
    (hdown : self.closed = false → w'.phase = .gone → .down w.link ∈ h'.handed)
    (hlinks : (links = self.links ∧ w'.registered = w.registered) ∨
      (links = self.links.erase w.link ∧ w'.registered = false)) :
    Inv prost { self.setSocket i stream ⟨.serving w', h'⟩ with
      queue := self.queue ++ new
      links := links
      linkCount := links.size } := by
  have hwas : self.worker? i = some (w, h) := by rw [worker?_eq hstream, hold]; rfl
  -- the other connections are as before, and this one has the link it had
  have hworker : ∀ j, ({ self.setSocket i stream ⟨.serving w', h'⟩ with
      queue := self.queue ++ new, links := links, linkCount := links.size } : Endpoint).worker? j =
      if i = j then some (w', h') else self.worker? j :=
    fun j => worker?_setSocket hstream j
  have hback : ∀ j v hist, (if i = j then some (w', h') else self.worker? j) = some (v, hist) →
      ∃ u hist', self.worker? j = some (u, hist') ∧ u.link = v.link := by
    intro j v hist hj
    split at hj
    · rename_i hij
      subst hij
      cases hj
      exact ⟨w, h, hwas, hlink.symm⟩
    · exact ⟨v, hist, hj, rfl⟩
  have hevents : ({ self.setSocket i stream ⟨.serving w', h'⟩ with
      queue := self.queue ++ new, links := links, linkCount := links.size } : Endpoint).events =
      self.events ++ new := by
    simp [events, setSocket]
  have hapart : ∀ j v hist, self.worker? j = some (v, hist) → i ≠ j → v.link ≠ w.link :=
    fun j v hist hv hij hvl => hij (inv.distinct i j w v h hist hwas hv hvl.symm)
  refine ⟨?_, ?_, inv.positive, ?_, ?_, ?_, rfl, ?_, ?_, ?_⟩
  · exact fun j other hj => inv.sockets_set hstream hsocket hj
  · intro j v hist hj
    rw [hworker] at hj
    obtain ⟨u, hist', hu, hul⟩ := hback j v hist hj
    rw [← hul]
    exact inv.bounded j u hist' hu
  · intro j j' v v' hist hist' hj hj' hv
    rw [hworker] at hj hj'
    obtain ⟨u, g, hu, hul⟩ := hback j v hist hj
    obtain ⟨u', g', hu', hul'⟩ := hback j' v' hist' hj'
    exact inv.distinct j j' u u' g g' hu hu' (by rw [hul, hul', hv])
  · intro j v hist hj
    rw [hworker] at hj
    rw [hevents, List.filter_append]
    split at hj
    · cases hj
      rw [hlink, inv.handed i w h hwas, hhanded, List.filter_eq_self.mpr habout]
    · rename_i hij
      rw [inv.handed j v hist hj, filter_about_ne habout (hapart j v hist hj hij), List.append_nil]
  · intro link hnone
    have hne : link ≠ w.link := by
      intro heq
      refine hnone i w' h' ?_ (hlink.trans heq.symm)
      rw [hworker, if_pos rfl]
    rw [hevents, List.filter_append, filter_about_ne habout hne, List.append_nil]
    refine inv.silent link fun j v hist hv => ?_
    by_cases hij : i = j
    · subst hij
      rw [hwas] at hv
      cases hv
      exact hne.symm
    · refine hnone j v hist ?_
      rw [hworker, if_neg hij, hv]
  · intro link j hj
    rw [hworker]
    obtain ⟨hentry, hmine⟩ := (inv.entries hwas hlinks link j).mp hj
    obtain ⟨v, hist, hv, hvlink, hvreg⟩ := inv.table link j hentry
    by_cases hij : i = j
    · subst hij
      cases hwas.symm.trans hv
      exact ⟨w', h', if_pos rfl, hlink.trans hvlink, hmine hvlink.symm⟩
    · exact ⟨v, hist, (if_neg hij).trans hv, hvlink, hvreg⟩
  · intro hshut j v hist hj hvreg
    rw [hworker] at hj
    refine (inv.entries hwas hlinks v.link j).mpr ?_
    split at hj
    · rename_i hij
      subst hij
      cases hj
      have hreg : w.registered = true := by
        rcases hlinks with ⟨-, hreg⟩ | ⟨-, hreg⟩
        · exact hreg.symm.trans hvreg
        · cases hreg.symm.trans hvreg
      rw [hlink]
      exact ⟨inv.known hshut i w h hwas hreg, fun _ => hvreg⟩
    · rename_i hij
      exact ⟨inv.known hshut j v hist hj hvreg, fun hvl => absurd hvl (hapart j v hist hj hij)⟩
  · intro hopen j v hist hj
    rw [hworker] at hj
    split at hj
    · cases hj
      rw [hlink]
      exact hdown hopen
    · exact inv.down hopen j v hist hj

/-- `attach_stream` enters a link under a fresh id. -/
theorem Inv.attach {h : History} (inv : Inv prost self) (hstream : self.streams[i]? = some stream)
    (hold : stream.socket.worker? = none)
    (hsocket : Socket.Inv prost stream.expected (· ∈ self.allowedPeers) self.localNode
      ⟨.serving w, h⟩) (hlink : w.link = self.nextLink) (hreg : w.registered = true)
    (hhanded : h.handed = []) :
    Inv prost { self.setSocket i stream ⟨.serving w, h⟩ with
      nextLink := self.nextLink + 1
      links := self.links.insert w.link i
      linkCount := (self.links.insert w.link i).size } := by
  have hwas : self.worker? i = none := by rw [worker?_eq hstream, hold]
  have hworker : ∀ j, ({ self.setSocket i stream ⟨.serving w, h⟩ with
      nextLink := self.nextLink + 1, links := self.links.insert w.link i,
      linkCount := (self.links.insert w.link i).size } : Endpoint).worker? j =
      if i = j then some (w, h) else self.worker? j :=
    fun j => worker?_setSocket hstream j
  have hfresh : ∀ j v hist, self.worker? j = some (v, hist) → v.link ≠ w.link := by
    intro j v hist hv heq
    exact (inv.bounded j v hist hv).2.ne (heq.trans hlink)
  refine ⟨?_, ?_, Nat.succ_pos _, ?_, ?_, ?_, rfl, ?_, ?_, ?_⟩
  · exact fun j other hj => inv.sockets_set hstream hsocket hj
  · intro j v hist hj
    rw [hworker] at hj
    change 0 < v.link ∧ v.link < self.nextLink + 1
    split at hj
    · cases hj
      rw [hlink]
      exact ⟨inv.positive, Nat.lt_succ_self _⟩
    · obtain ⟨hpos, hlt⟩ := inv.bounded j v hist hj
      exact ⟨hpos, hlt.trans (Nat.lt_succ_self _)⟩
  · intro j j' v v' hist hist' hj hj' hv
    rw [hworker] at hj hj'
    split at hj <;> split at hj'
    · rename_i hij hij'
      exact hij.symm.trans hij'
    · cases hj
      exact absurd hv.symm (hfresh j' v' hist' hj')
    · cases hj'
      exact absurd hv (hfresh j v hist hj)
    · exact inv.distinct j j' v v' hist hist' hj hj' hv
  · intro j v hist hj
    rw [hworker] at hj
    split at hj
    · cases hj
      rw [hhanded]
      exact inv.silent w.link hfresh
    · exact inv.handed j v hist hj
  · intro link hnone
    refine inv.silent link fun j v hist hv => hnone j v hist ?_
    rw [hworker, if_neg, hv]
    rintro rfl
    rw [hwas] at hv
    cases hv
  · intro link j hj
    rw [hworker]
    have hj : (self.links.insert w.link i)[link]? = some j := hj
    rw [OrdMap.get_insert] at hj
    split at hj
    · rename_i heq
      cases hj
      exact ⟨w, h, if_pos rfl, heq, hreg⟩
    · obtain ⟨v, hist, hv, hvlink, hvreg⟩ := inv.table link j hj
      refine ⟨v, hist, ?_, hvlink, hvreg⟩
      rw [if_neg, hv]
      rintro rfl
      rw [hwas] at hv
      cases hv
  · intro hshut j v hist hj hvreg
    rw [hworker] at hj
    change (self.links.insert w.link i)[v.link]? = some j
    rw [OrdMap.get_insert]
    split at hj
    · rename_i hij
      subst hij
      cases hj
      exact if_pos rfl
    · rw [if_neg (hfresh j v hist hj).symm]
      exact inv.known hshut j v hist hj hvreg
  · intro hopen j v hist hj hphase
    rw [hworker] at hj
    split at hj
    · cases hj
      simp [Worker.registered, hphase] at hreg
    · exact inv.down hopen j v hist hj hphase

/-! ## Steps -/

theorem worker?_openStream (self : Endpoint) (expected : Option NodeId) (i : Nat) :
    (self.openStream expected).worker? i = self.worker? i := by
  simp only [worker?, openStream, List.getElem?_append]
  split
  · rfl
  · rename_i hge
    rw [List.getElem?_eq_none (Nat.le_of_not_lt hge)]
    rcases hi : i - self.streams.length with _ | n
    · simp [Socket.start, Attachment.start_eq, Socket.worker?]
    · simp

theorem Inv.openStream (inv : Inv prost self) (expected : Option NodeId) :
    Inv prost (self.openStream expected) := by
  refine inv.same ?_ (worker?_openStream self expected) rfl rfl rfl rfl rfl id
  intro i stream hi
  simp only [Endpoint.openStream, List.getElem?_append] at hi
  split at hi
  · exact inv.sockets i stream hi
  · obtain ⟨-, hlt⟩ := List.getElem?_eq_some_iff.mp hi
    have hmem := List.mem_of_getElem? hi
    rw [List.mem_singleton.mp hmem]
    exact Socket.inv_start

/-- A step of a connection that is not served and does not become so. -/
theorem Inv.set_unserved (inv : Inv prost self) (hstream : self.streams[i]? = some stream)
    (hold : stream.socket.worker? = none) (hnew : k.worker? = none)
    (hk : k.Inv prost stream.expected (· ∈ self.allowedPeers) self.localNode) :
    Inv prost (self.setSocket i stream k) := by
  refine inv.same (fun j other hj => inv.sockets_set hstream hk hj) (fun j => ?_) rfl rfl rfl rfl
    rfl id
  rw [worker?_setSocket hstream]
  split
  · rename_i hij
    rw [← hij, worker?_eq hstream, hold, hnew]
  · rfl

theorem allocate_eq_some {link : LinkId} (h : self.allocate = some link) :
    link = self.nextLink := by
  unfold allocate at h
  split at h <;> cases h
  rfl

theorem Inv.check {self self' : Endpoint} (inv : Inv prost self)
    (hstep : self.check prost i = some self') : Inv prost self' := by
  simp only [Endpoint.check, Option.bind_eq_bind, Option.bind_eq_some_iff] at hstep
  obtain ⟨stream, hstream, k, hk, hstep⟩ := hstep
  have hstream := stream?_eq_some hstream
  have hsocket := inv.sockets i stream hstream
  have hk' := hsocket.step
    (fun allowedPeers nextLink heq node hnode => by cases heq; exact hnode) hk
  obtain ⟨⟨peer, buffered, hchecking⟩, hhist, hresult⟩ := Socket.step_check hk
  have hold : stream.socket.worker? = none := by simp only [Socket.worker?, hchecking]
  rcases hresult with hnone | ⟨link, peer', buffered', hlink, rfl⟩
  · have hstep : some (self.setSocket i stream k) = some self' := by
      simp only [Socket.worker?] at hnone
      split at hnone
      · cases hnone
      · rename_i hnot
        split at hstep
        · rename_i w hw
          exact absurd hw (hnot w)
        · exact hstep
    cases hstep
    exact inv.set_unserved hstream hold hnone hk'
  · cases hstep
    refine inv.attach hstream hold hk' (allocate_eq_some hlink) rfl ?_
    simp only [Socket.Inv, hchecking] at hsocket
    exact hsocket.1.handed

theorem noteSubmit_handed (h : History) (w : Worker) (command : LinkCommand) :
    (h.note (.serving w) (.submit command)).handed = h.handed := by
  cases command <;> rfl

theorem Inv.submit {self self' : Endpoint} {command : LinkCommand} (inv : Inv prost self)
    (hstep : self.step prost (.submit i command) = some self') : Inv prost self' := by
  simp only [Endpoint.step, Option.bind_eq_bind, Option.bind_eq_some_iff] at hstep
  obtain ⟨stream, hstream, k, hk, hstep⟩ := hstep
  cases hstep
  have hstream := stream?_eq_some hstream
  have hk' := (inv.sockets i stream hstream).step (fun _ _ heq => by cases heq) hk
  cases hw : stream.socket.worker? with
  | none =>
    exact inv.set_unserved hstream hw
      (Socket.step_unserved hk hw fun _ _ heq => by cases heq) hk'
  | some served =>
    obtain ⟨w, h⟩ := served
    have hold := Socket.worker?_eq_some.mp hw
    rw [hold] at hk
    rcases Socket.step_served hk with ⟨command', heq, rfl⟩ | ⟨ws, w', heq, -⟩
    · cases heq
      have hset := Inv.set_worker [] self.links inv hstream hold hk' rfl
        (by rw [noteSubmit_handed, List.append_nil]) (by simp)
        (fun hopen hphase => by
          rw [noteSubmit_handed]
          exact inv.down hopen i w h (by rw [worker?_eq hstream, hw]) hphase) (.inl ⟨rfl, rfl⟩)
      rw [List.append_nil, ← inv.count] at hset
      exact hset
    · cases heq

theorem Inv.progress {self self' : Endpoint} {s : AttachStep} (inv : Inv prost self)
    (hstep : self.progress prost i s = some self') : Inv prost self' := by
  simp only [Endpoint.progress, Option.bind_eq_bind, Option.bind_eq_some_iff] at hstep
  obtain ⟨stream, hstream, k, hk, hstep⟩ := hstep
  have hstream := stream?_eq_some hstream
  have hsocket := inv.sockets i stream hstream
  cases hw : stream.socket.worker? with
  | none =>
    have hnot : ∀ w, stream.socket.attachment ≠ .serving w := by
      intro w hserving
      simp only [Socket.worker?, hserving] at hw
      cases hw
    have hs : ∀ allowedPeers nextLink, s ≠ .check allowedPeers nextLink := by
      rintro allowedPeers nextLink rfl
      cases hstep
    have hnew := Socket.step_unserved hk hw hs
    have hk' := hsocket.step (fun allowedPeers nextLink heq => absurd heq (hs _ _)) hk
    split at hstep
    · cases hstep
    · cases hstep
    · rename_i w hserving
      exact absurd hserving (hnot w)
    · split at hstep <;> cases hstep
      exact inv.set_unserved hstream hw hnew hk'
    · rename_i w hserving
      exact absurd hserving (hnot w)
    · cases hstep
      exact inv.set_unserved hstream hw hnew hk'
  | some served =>
    obtain ⟨w, h⟩ := served
    have hold := Socket.worker?_eq_some.mp hw
    obtain ⟨me, hello, -, -, -, hinv⟩ : ∃ peer hello, identify prost hello = .ok peer ∧
        peer ∈ self.allowedPeers ∧ (∀ node, stream.expected = some node → peer = node) ∧
        w.Inv self.localNode peer hello h := by
      rw [hold] at hsocket
      exact hsocket
    have hk0 := hk
    rw [hold] at hk0
    rcases Socket.step_served hk0 with ⟨command, rfl, -⟩ | ⟨ws, w', rfl, acts, rfl⟩
    · cases hstep
    have hk' := hsocket.step (fun _ _ heq => by cases heq) hk
    simp only [hold] at hstep
    have hlink := acts.link
    cases ws with
    | emitted =>
      simp only at hstep
      split at hstep
      · cases hstep
        have hset := Inv.set_worker w.event?.toList self.links inv hstream hold hk' hlink rfl
          (fun e he => hinv.event_about (Option.mem_toList.mp he)) (fun _ => acts.down (by simp))
          (.inl ⟨rfl, acts.registered (by simp)⟩)
        rw [← inv.count] at hset
        exact hset
      · cases hstep
    | remove =>
      cases hstep
      have hset := Inv.set_worker [] (self.links.erase w.link) inv hstream hold hk' hlink
        (by rw [List.append_nil]; exact acts.handed_eq (by simp)) (by simp)
        (fun _ => acts.down (by simp)) (.inr ⟨rfl, acts.removed_registered.2⟩)
      rw [List.append_nil] at hset
      exact hset
    | closed =>
      simp only at hstep
      split at hstep <;> cases hstep
      rename_i hclosed
      have hset := Inv.set_worker [] self.links inv hstream hold hk' hlink
        (by rw [List.append_nil]; exact acts.handed_eq (by simp)) (by simp)
        (fun hopen => by rw [hclosed] at hopen; cases hopen)
        (.inl ⟨rfl, acts.registered (by simp)⟩)
      rw [List.append_nil, ← inv.count] at hset
      exact hset
    | decode | take | wrote n | read bytes | fail =>
      cases hstep
      have hset := Inv.set_worker [] self.links inv hstream hold hk' hlink
        (by rw [List.append_nil]; exact acts.handed_eq (by simp)) (by simp)
        (fun _ => acts.down (by simp)) (.inl ⟨rfl, acts.registered (by simp)⟩)
      rw [List.append_nil, ← inv.count] at hset
      exact hset

theorem Inv.shutdown (inv : Inv prost self) (aborted : List Nat) :
    Inv prost { self with
      streams := self.streams.mapIdx fun i stream =>
        if i ∈ aborted then { stream with alive := false } else stream
      links := ∅
      linkCount := 0
      shutDown := true } := by
  have hget : ∀ (i : Nat) (stream : Stream), (self.streams.mapIdx fun i stream =>
      if i ∈ aborted then { stream with alive := false } else stream)[i]? = some stream →
      ∃ before, self.streams[i]? = some before ∧ stream.socket = before.socket ∧
        stream.expected = before.expected := by
    intro i stream hi
    rw [List.getElem?_mapIdx, Option.map_eq_some_iff] at hi
    obtain ⟨before, hbefore, rfl⟩ := hi
    refine ⟨before, hbefore, ?_⟩
    split <;> exact ⟨rfl, rfl⟩
  have hworker : ∀ i, ({ self with
      streams := self.streams.mapIdx fun i stream =>
        if i ∈ aborted then { stream with alive := false } else stream
      links := ∅, linkCount := 0, shutDown := true } : Endpoint).worker? i = self.worker? i := by
    intro i
    simp only [worker?, List.getElem?_mapIdx]
    cases self.streams[i]? with
    | none => rfl
    | some stream =>
      simp only [Option.map_some, Option.bind_some]
      split <;> rfl
  refine ⟨?_, ?_, inv.positive, ?_, ?_, ?_, ?_, ?_, ?_, ?_⟩
  · intro i stream hi
    obtain ⟨before, hbefore, hsocket, hexpected⟩ := hget i stream hi
    rw [hsocket, hexpected]
    exact inv.sockets i before hbefore
  · simpa only [hworker] using inv.bounded
  · simpa only [hworker] using inv.distinct
  · simp only [hworker]
    exact inv.handed
  · simp only [hworker]
    exact inv.silent
  · rfl
  · intro link i hi
    simp at hi
  · intro hshut
    cases hshut
  · simpa only [hworker] using inv.down

theorem Inv.step {self self' : Endpoint} {x : EndpointStep} (inv : Inv prost self)
    (hstep : self.step prost x = some self') : Inv prost self' := by
  cases x with
  | allowPeer peer =>
    cases hstep
    refine inv.same ?_ (fun _ => rfl) rfl rfl rfl rfl rfl id
    intro i stream hi
    refine (inv.sockets i stream hi).mono fun node hnode => ?_
    exact Std.ExtTreeSet.mem_insert.mpr (.inr hnode)
  | connect expectedPeer =>
    simp only [Endpoint.step] at hstep
    split at hstep <;> cases hstep
    · exact inv.openStream _
    · exact inv
  | accept =>
    simp only [Endpoint.step] at hstep
    split at hstep <;> cases hstep
    exact inv.openStream none
  | check i => exact inv.check hstep
  | progress i s => exact inv.progress hstep
  | submit i command => exact inv.submit hstep
  | recv =>
    simp only [Endpoint.step] at hstep
    split at hstep <;> cases hstep
    rename_i event queue hopen hqueue
    refine inv.same inv.sockets (fun _ => rfl) rfl ?_ rfl rfl rfl id
    simp [events, hqueue]
  | dropReceiver =>
    cases hstep
    exact inv.same inv.sockets (fun _ => rfl) rfl rfl rfl rfl rfl fun hopen => by cases hopen
  | shutdown aborted =>
    cases hstep
    exact inv.shutdown aborted

theorem Inv.run {localNode : NodeId} {allowedPeers : OrdSet NodeId} {steps : List EndpointStep}
    (hrun : (bind localNode allowedPeers).run prost steps = some self) : Inv prost self :=
  foldlM_inv (fun _ _ _ h hs => h.step hs) (inv_bind localNode allowedPeers) hrun

theorem Inv.worker (inv : Inv prost self) {h : History} (hw : self.worker? i = some (w, h)) :
    ∃ (stream : Stream) (peer : NodeId) (hello : WireFrame), self.streams[i]? = some stream ∧
      stream.socket.history = h ∧ identify prost hello = .ok peer ∧ peer ∈ self.allowedPeers ∧
      (∀ node, stream.expected = some node → peer = node) ∧
      w.Inv self.localNode peer hello h := by
  obtain ⟨stream, hstream, hsocket⟩ := Option.bind_eq_some_iff.mp hw
  have hinv := inv.sockets i stream hstream
  rw [Socket.worker?_eq_some.mp hsocket] at hinv
  obtain ⟨peer, hello, hid, hallowed, hexpected, hworker⟩ := hinv
  refine ⟨stream, peer, hello, hstream, ?_, hid, hallowed, hexpected, hworker⟩
  rw [Socket.worker?_eq_some.mp hsocket]

/-- An event belongs to a connection that is served. -/
theorem Inv.event_worker (inv : Inv prost self) {event : LinkEvent} (hevent : event ∈ self.events) :
    ∃ i w h, self.worker? i = some (w, h) ∧ w.link = linkOf event ∧ event ∈ h.handed := by
  have hmem : event ∈ self.events.filter (about (linkOf event)) :=
    List.mem_filter.mpr ⟨hevent, by simp [about]⟩
  by_contra hnone
  have hsilent : self.events.filter (about (linkOf event)) = [] := by
    refine inv.silent _ fun i w h hw hlink => hnone ⟨i, w, h, hw, hlink, ?_⟩
    rw [← inv.handed i w h hw, hlink]
    exact hmem
  rw [hsilent] at hmem
  cases hmem

/-! ## Results -/

/-- However the tasks are interleaved and whatever the peers send, the queue takes of each link one
`Up`, then frames and reports, and at most one `Down`, which is the last. -/
theorem link_events_in_order (localNode : NodeId) (allowedPeers : OrdSet NodeId)
    (steps : List EndpointStep) (self : Endpoint)
    (hrun : (bind localNode allowedPeers).run prost steps = some self) (link : LinkId) :
    self.events.filter (about link) = [] ∨
      ∃ peer traffic, (∀ e ∈ traffic, isTraffic link e = true) ∧
        (self.events.filter (about link) = .up link peer :: traffic ∨
          self.events.filter (about link) = .up link peer :: (traffic ++ [.down link])) := by
  have inv := Inv.run hrun
  by_cases hserved : ∃ i w h, self.worker? i = some (w, h) ∧ w.link = link
  · obtain ⟨i, w, h, hw, rfl⟩ := hserved
    obtain ⟨stream, peer, hello, -, -, -, -, -, hworker⟩ := inv.worker hw
    rw [inv.handed i w h hw]
    rcases hworker.events.shape with hnil | ⟨traffic, hall, heq⟩
    · exact .inl hnil
    · exact .inr ⟨peer, traffic, hall, heq⟩
  · refine .inl (inv.silent link fun i w h hw hlink => hserved ⟨i, w, h, hw, hlink⟩)

/-- Every `Up` of a link names an allowed peer, the one whose hello was the first frame of the one
connection that has the link and, where this side connected, the one that was asked for. -/
theorem up_names_admitted_peer (localNode : NodeId) (allowedPeers : OrdSet NodeId)
    (steps : List EndpointStep) (self : Endpoint)
    (hrun : (bind localNode allowedPeers).run prost steps = some self) (link : LinkId)
    (peer : NodeId) (hup : .up link peer ∈ self.events) :
    peer ∈ self.allowedPeers ∧ ∃ (i : Nat) (stream : Stream) (w : Worker) (hello : WireFrame),
      self.streams[i]? = some stream ∧ self.worker? i = some (w, stream.socket.history) ∧
      w.link = link ∧ (∀ j v h, self.worker? j = some (v, h) → v.link = link → j = i) ∧
      stream.socket.history.decoded.head? = some hello ∧ identify prost hello = .ok peer ∧
      ∀ node, stream.expected = some node → peer = node := by
  have inv := Inv.run hrun
  obtain ⟨i, w, h, hw, hlink, hmem⟩ := inv.event_worker hup
  have hlink : w.link = link := hlink
  obtain ⟨stream, node, hello, hstream, rfl, hid, hallowed, hexpected, hworker⟩ := inv.worker hw
  obtain ⟨held, hdecoded, -⟩ := hworker.decoded
  rw [hworker.events.up hmem]
  refine ⟨hallowed, i, stream, w, hello, hstream, hw, hlink, ?_, ?_, hid, hexpected⟩
  · exact fun j v h hv hvlink => inv.distinct j i v w h _ hv hw (hvlink.trans hlink.symm)
  · rw [hdecoded]
    rfl

/-- The endpoint of node 1 accepts node 2, which goes at once, and connects to node 2 again. -/
def twoLinks : List EndpointStep :=
  let hello := frameBytes (helloOf (.ofByte 2))
  let greet i : List EndpointStep :=
    [.progress i (.wrote 44), .progress i .decode, .progress i (.read hello), .progress i .decode,
      .check i, .progress i (.work .emitted), .recv]
  [.accept] ++ greet 0 ++ [.progress 0 (.work .decode), .progress 0 (.work .fail),
    .progress 0 (.work .remove), .progress 0 (.work .emitted)] ++ [.connect (.ofByte 2)] ++ greet 1

def allowsTwo : OrdSet NodeId := (∅ : OrdSet NodeId).insert (.ofByte 2)

/-- The runtime has received the end of the first link; the second waits to be announced. -/
theorem twoLinks_events :
    ∃ self, (bind (.ofByte 1) allowsTwo).run linkHelloLayout.read twoLinks = some self ∧
      self.received = [.up 1 (.ofByte 2), .down 1] ∧ self.queue = [.up 2 (.ofByte 2)] ∧
      self.shutDown = false := by
  have hrun : (((bind (.ofByte 1) allowsTwo).run linkHelloLayout.read twoLinks).map fun self =>
      decide (self.received = [.up 1 (.ofByte 2), .down 1] ∧ self.queue = [.up 2 (.ofByte 2)] ∧
        self.shutDown = false)) = some true := by
    decide +kernel
  obtain ⟨self, hself, hdec⟩ := Option.map_eq_some_iff.mp hrun
  exact ⟨self, hself, of_decide_eq_true hdec⟩

theorem link_events_in_order_twoLinks :
    ∃ self, (bind (.ofByte 1) allowsTwo).run linkHelloLayout.read twoLinks = some self ∧
      (self.events.filter (about 1) = [] ∨
        ∃ peer traffic, (∀ e ∈ traffic, isTraffic 1 e = true) ∧
          (self.events.filter (about 1) = .up 1 peer :: traffic ∨
            self.events.filter (about 1) = .up 1 peer :: (traffic ++ [.down 1]))) := by
  obtain ⟨self, hself, -⟩ := twoLinks_events
  exact ⟨self, hself, link_events_in_order _ _ twoLinks self hself 1⟩

theorem up_names_admitted_peer_twoLinks :
    ∃ self, (bind (.ofByte 1) allowsTwo).run linkHelloLayout.read twoLinks = some self ∧
      .up 2 (.ofByte 2) ∈ self.events ∧ (.ofByte 2) ∈ self.allowedPeers ∧
      ∃ i w h, self.worker? i = some (w, h) ∧ w.link = 2 := by
  obtain ⟨self, hself, hreceived, hqueue, -⟩ := twoLinks_events
  have hup : .up 2 (.ofByte 2) ∈ self.events := by
    simp [events, hqueue]
  obtain ⟨hallowed, i, stream, w, hello, -, hw, hlink, -⟩ :=
    up_names_admitted_peer _ _ twoLinks self hself 2 _ hup
  exact ⟨self, hself, hup, hallowed, i, w, _, hw, hlink⟩

end Endpoint
end Transport
end MeshBus
