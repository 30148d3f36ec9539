import MeshBus.Lib.Emit
import MeshBus.Transport.Worker

/-!
# Transport.Connection

The two ends of a TCP connection: two `run_link` tasks and a bounded pipe of bytes in each
direction. Both runtimes take events at once and submit commands as they like. A task that writes a
frame does not read, so two tasks that write at the same time can fill both pipes and wait for
each other for good. They cannot if a task takes a frame only while the other end is not writing or
while the pipe has room for the whole frame.
-/

namespace MeshBus
namespace Transport

open Wire

/-- The two ends. -/
inductive End where
  | left
  | right
deriving DecidableEq

def End.peer : End → End
  | .left => .right
  | .right => .left

theorem End.peer_ne (e : End) : e.peer ≠ e := by cases e <;> decide

/-- The pipe of an end holds what it has written and the other has not read. -/
structure Connection where
  worker : End → Worker
  pipe : End → Bytes

inductive ConnectionStep where
  /-- `TcpEndpoint::send` or `close` at this end. -/
  | submit (e : End) (command : LinkCommand)
  | work (e : End) (step : WorkerStep)

namespace Connection

def setWorker (c : Connection) (e : End) (w : Worker) : Connection :=
  { c with worker := Function.update c.worker e w }

def setPipe (c : Connection) (e : End) (bytes : Bytes) : Connection :=
  { c with pipe := Function.update c.pipe e bytes }

/-- What the socket of an end does for a step of its task; `none` if the task has to wait. -/
def socket (capacity : Nat) (c : Connection) (e : End) : WorkerStep → Option Connection
  | .wrote n =>
    if (c.pipe e).length + n ≤ capacity then
      some (c.setPipe e (c.pipe e ++ (c.worker e).unwritten.take n))
    else none
  | .read bytes =>
    if bytes.isEmpty then
      -- the stream ends when the other task is done and everything was read
      match (c.worker e.peer).phase with
      | .gone => if (c.pipe e.peer).isEmpty then some c else none
      | _ => none
    else if bytes.isPrefixOf (c.pipe e.peer) then
      some (c.setPipe e.peer ((c.pipe e.peer).drop bytes.length))
    else none
  | .decode | .emitted | .closed | .take | .fail | .remove => some c

def step (capacity : Nat) (c : Connection) : ConnectionStep → Option Connection
  | .submit e command =>
    if (c.worker e).commands.length < linkQueueCapacity then
      some (c.setWorker e
        { c.worker e with commands := (c.worker e).commands ++ [command] })
    else none
  | .work e s => do
    let w ← (c.worker e).step s
    let c ← c.socket capacity e s
    some (c.setWorker e w)

def run (capacity : Nat) (c : Connection) (steps : List ConnectionStep) : Option Connection :=
  steps.foldlM (step capacity) c

/-- Both tasks at the head of their loop, with what came behind the hello. -/
def start (links : End → LinkId) (buffered : End → Bytes) : Connection where
  worker e := ⟨links e, .decoding, buffered e, []⟩
  pipe _ := []

/-- The task of an end waits in `write_all` for room in a full pipe. -/
def blocked (capacity : Nat) (c : Connection) (e : End) : Bool :=
  (c.worker e).isWriting && capacity ≤ (c.pipe e).length

/-- A task takes a frame only while the other end is not writing, or while its pipe has room for
all of it. -/
def courteous (capacity : Nat) (c : Connection) : ConnectionStep → Bool
  | .work e .take =>
    match (c.worker e).commands with
    | .send frame :: _ => !(c.worker e.peer).isWriting ||
        (c.pipe e).length + (frameBytes frame).length ≤ capacity
    | _ => true
  | _ => true

/-! ## Steps -/

theorem socket_worker {capacity : Nat} {c c' : Connection} {e : End} {s : WorkerStep}
    (h : c.socket capacity e s = some c') : c'.worker = c.worker := by
  cases s with
  | wrote n =>
    simp only [socket] at h
    split at h <;> cases h
    rfl
  | read bytes =>
    simp only [socket] at h
    split at h
    · split at h
      · split at h <;> cases h
        rfl
      · cases h
    · split at h <;> cases h
      rfl
  | decode | emitted | closed | take | fail | remove =>
    cases h
    rfl

/-- A step of a task leaves the pipe of its end, or adds what the task writes. -/
theorem socket_pipe {capacity : Nat} {c c' : Connection} {e : End} {s : WorkerStep}
    (h : c.socket capacity e s = some c') :
    c'.pipe e = c.pipe e ∨ ∃ n, s = .wrote n ∧
      c'.pipe e = c.pipe e ++ (c.worker e).unwritten.take n := by
  cases s with
  | wrote n =>
    simp only [socket] at h
    split at h <;> cases h
    exact .inr ⟨n, rfl, Function.update_self ..⟩
  | read bytes =>
    simp only [socket] at h
    split at h
    · split at h
      · split at h <;> cases h
        exact .inl rfl
      · cases h
    · split at h <;> cases h
      exact .inl (Function.update_of_ne (End.peer_ne e).symm ..)
  | decode | emitted | closed | take | fail | remove =>
    cases h
    exact .inl rfl

/-- Only what the other end writes goes into its pipe. -/
theorem socket_peer {capacity : Nat} {c c' : Connection} {e : End} {s : WorkerStep}
    (h : c.socket capacity e s = some c') :
    (c'.pipe e.peer).length ≤ (c.pipe e.peer).length := by
  cases s with
  | wrote n =>
    simp only [socket] at h
    split at h <;> cases h
    simp [setPipe, Function.update_of_ne (End.peer_ne e)]
  | read bytes =>
    simp only [socket] at h
    split at h
    · split at h
      · split at h <;> cases h
        exact le_refl _
      · cases h
    · split at h <;> cases h
      simp [setPipe]
  | decode | emitted | closed | take | fail | remove =>
    cases h
    exact le_refl _

/-! ## One end always gets done -/

/-- If the task of an end is writing, its pipe has room for what is left. -/
def Fits (capacity : Nat) (c : Connection) (e : End) : Prop :=
  (c.worker e).isWriting = true → (c.pipe e).length + (c.worker e).unwritten.length ≤ capacity

structure Inv (capacity : Nat) (c : Connection) : Prop where
  /-- A task in `write_all` has bytes left. -/
  busy : ∀ e, (c.worker e).isWriting = true → (c.worker e).unwritten ≠ []
  fits : ∃ e, Fits capacity c e

theorem inv_start (capacity : Nat) (links : End → LinkId) (buffered : End → Bytes) :
    Inv capacity (start links buffered) := by
  refine ⟨?_, .left, ?_⟩
  · intro e h
    cases h
  · intro h
    cases h

theorem Inv.not_blocked {capacity : Nat} {c : Connection} (h : Inv capacity c) :
    ∃ e, blocked capacity c e = false := by
  obtain ⟨e, hfits⟩ := h.fits
  refine ⟨e, ?_⟩
  by_contra hblocked
  simp only [blocked, Bool.not_eq_false, Bool.and_eq_true, decide_eq_true_eq] at hblocked
  have hle := hfits hblocked.1
  have hpos := List.length_pos_iff.mpr (h.busy e hblocked.1)
  omega

theorem Inv.submit {capacity : Nat} {c : Connection} (h : Inv capacity c) (e : End)
    (commands : List LinkCommand) :
    Inv capacity (c.setWorker e { c.worker e with commands := commands }) := by
  have hsame : ∀ x, ((c.setWorker e { c.worker e with commands := commands }).worker x).phase =
      (c.worker x).phase := by
    intro x
    by_cases hx : x = e
    · subst hx
      simp [setWorker]
    · simp [setWorker, Function.update_of_ne hx]
  obtain ⟨x, hfits⟩ := h.fits
  refine ⟨?_, x, ?_⟩
  · intro y
    simp only [Worker.isWriting, Worker.unwritten, hsame]
    exact h.busy y
  · simp only [Fits, Worker.isWriting, Worker.unwritten, hsame]
    exact hfits

theorem Inv.work {capacity : Nat} {c c1 : Connection} {e : End} {s : WorkerStep} {w : Worker}
    (h : Inv capacity c) (hcourteous : courteous capacity c (.work e s) = true)
    (hw : (c.worker e).step s = some w) (hc : c.socket capacity e s = some c1) :
    Inv capacity (c1.setWorker e w) := by
  have hself : (c1.setWorker e w).worker e = w := Function.update_self ..
  have hother : ∀ x, x ≠ e → (c1.setWorker e w).worker x = c.worker x := by
    intro x hx
    rw [setWorker, ← socket_worker hc]
    exact Function.update_of_ne hx ..
  have hbusy : (w.isWriting = true → w.unwritten ≠ []) →
      ∀ x, ((c1.setWorker e w).worker x).isWriting = true →
        ((c1.setWorker e w).worker x).unwritten ≠ [] := by
    intro hw' x
    by_cases hx : x = e
    · subst hx
      rw [hself]
      exact hw'
    · rw [hother x hx]
      exact h.busy x
  -- the pipe of the other end only gets emptier
  have hpeer : Fits capacity c e.peer → Fits capacity (c1.setWorker e w) e.peer := by
    intro hfits hwriting
    rw [hother e.peer (End.peer_ne e)] at hwriting ⊢
    exact (Nat.add_le_add_right (socket_peer hc) _).trans (hfits hwriting)
  cases Worker.step_writes hw with
  | idle quiet =>
    refine ⟨hbusy fun hwriting => ?_, e, fun hwriting => ?_⟩
    · rw [quiet] at hwriting
      cases hwriting
    · rw [hself, quiet] at hwriting
      cases hwriting
  | starts taken bytes =>
    refine ⟨hbusy fun _ => ?_, ?_⟩
    · rw [bytes]
      refine List.ne_nil_of_length_pos ?_
      rw [FrameDecoder.length_frameBytes]
      have : 0 < headerLen := by decide
      omega
    · simp only [courteous, taken, Bool.or_eq_true, Bool.not_eq_true', decide_eq_true_eq]
        at hcourteous
      rcases hcourteous with hquiet | hroom
      · refine ⟨e.peer, hpeer fun hwriting => ?_⟩
        rw [hquiet] at hwriting
        cases hwriting
      · refine ⟨e, fun _ => ?_⟩
        rcases socket_pipe hc with hpipe | ⟨n, hs, -⟩
        · rw [hself, bytes, setWorker, hpipe]
          exact hroom
        · cases hs
  | goesOn writing lt bytes =>
    refine ⟨hbusy fun _ => ?_, ?_⟩
    · rw [bytes]
      exact List.drop_eq_nil_iff.not.mpr (Nat.not_le.mpr lt)
    · obtain ⟨x, hfits⟩ := h.fits
      by_cases hx : x = e
      · subst hx
        refine ⟨x, fun _ => ?_⟩
        have hle := hfits writing
        rcases socket_pipe hc with hpipe | ⟨n, hs, hpipe⟩
        · rw [hself, bytes, setWorker, hpipe, List.length_drop]
          omega
        · cases hs
          rw [hself, bytes, setWorker, hpipe, List.length_append, List.length_take,
            List.length_drop]
          omega
      · have hx : x = e.peer := by
          cases x <;> cases e <;> first | rfl | exact absurd rfl hx
        subst hx
        exact ⟨_, hpeer hfits⟩

theorem Inv.step {capacity : Nat} {c c' : Connection} {s : ConnectionStep} (h : Inv capacity c)
    (hcourteous : courteous capacity c s = true) (hstep : c.step capacity s = some c') :
    Inv capacity c' := by
  cases s with
  | submit e command =>
    simp only [Connection.step] at hstep
    split at hstep <;> cases hstep
    exact h.submit e _
  | work e s =>
    simp only [Connection.step, bind, Option.bind_eq_some_iff] at hstep
    obtain ⟨w, hw, c1, hc, heq⟩ := hstep
    cases heq
    exact h.work hcourteous hw hc

/-- While every task is courteous, one of the two ends is not blocked. -/
theorem ends_not_both_blocked (capacity : Nat) (links : End → LinkId) (buffered : End → Bytes)
    (steps : List ConnectionStep) (c : Connection)
    (hcourteous : AlongM (step capacity) (fun c s => courteous capacity c s = true)
      (start links buffered) steps)
    (hrun : (start links buffered).run capacity steps = some c) :
    ∃ e, blocked capacity c e = false := by
  have hinv : Inv capacity c :=
    hcourteous.inv (fun _ _ _ h hs hstep => h.step hs hstep) (inv_start capacity links buffered)
      hrun
  exact hinv.not_blocked

/-- A frame of the smallest size. -/
def ping : WireFrame := ⟨.ping, .control, []⟩

/-- Both ends take a ping, the second while the first is writing: its pipe has room. -/
def bothWrite : List ConnectionStep :=
  [.submit .left (.send ping), .submit .right (.send ping), .work .left .decode,
    .work .right .decode, .work .left .take, .work .left (.wrote 3), .work .right .take]

theorem ends_not_both_blocked_writing :
    ∃ c, (start (fun _ => 1) fun _ => []).run 8 bothWrite = some c ∧
      (c.worker .left).isWriting = true ∧ (c.worker .right).isWriting = true ∧
      ∃ e, blocked 8 c e = false := by
  have hwriting : (((start (fun _ => 1) fun _ => []).run 8 bothWrite).map fun c =>
      (c.worker .left).isWriting && (c.worker .right).isWriting) = some true := by
    decide +kernel
  obtain ⟨c, hrun, hboth⟩ := Option.map_eq_some_iff.mp hwriting
  rw [Bool.and_eq_true] at hboth
  exact ⟨c, hrun, hboth.1, hboth.2,
    ends_not_both_blocked 8 (fun _ => 1) (fun _ => []) bothWrite c (by decide +kernel) hrun⟩

/-! ## Two ends that write at once -/

/-- From `c` to `c'`, with no command submitted but pings. -/
def Leads (capacity : Nat) (c c' : Connection) : Prop :=
  ∃ steps, c.run capacity steps = some c' ∧
    ∀ e command, .submit e command ∈ steps → command = .send ping

theorem Leads.one {capacity : Nat} {c c' : Connection} {s : ConnectionStep}
    (hstep : c.step capacity s = some c')
    (hs : ∀ e command, s = .submit e command → command = .send ping) : Leads capacity c c' := by
  refine ⟨[s], ?_, ?_⟩
  · simp only [run, List.foldlM_cons, List.foldlM_nil, bind, hstep, Option.bind_some]
    rfl
  · intro e command hmem
    exact hs e command (List.mem_singleton.mp hmem).symm

theorem Leads.trans {capacity : Nat} {c c1 c2 : Connection} (h1 : Leads capacity c c1)
    (h2 : Leads capacity c1 c2) : Leads capacity c c2 := by
  obtain ⟨steps1, hrun1, hsteps1⟩ := h1
  obtain ⟨steps2, hrun2, hsteps2⟩ := h2
  refine ⟨steps1 ++ steps2, ?_, ?_⟩
  · simp only [run, List.foldlM_append, bind] at hrun1 hrun2 ⊢
    rw [hrun1, Option.bind_some, hrun2]
  · intro e command hmem
    exact (List.mem_append.mp hmem).elim (hsteps1 e command) (hsteps2 e command)

/-- An end with its task and the fill of its pipe, while the other end is as in `c0`. -/
structure Looks (c0 : Connection) (e : End) (w : Worker) (n : Nat) (c : Connection) : Prop where
  worker : c.worker e = w
  pipe : (c.pipe e).length = n
  peerWorker : c.worker e.peer = c0.worker e.peer
  peerPipe : c.pipe e.peer = c0.pipe e.peer

section Looks

variable (capacity : Nat) {n : Nat} {c0 c : Connection} {e : End} {w w' : Worker}

theorem Looks.submit (h : Looks c0 e w n c) (hroom : w.commands.length < linkQueueCapacity) :
    ∃ c', Leads capacity c c' ∧
      Looks c0 e { w with commands := w.commands ++ [.send ping] } n c' := by
  refine ⟨c.setWorker e { w with commands := w.commands ++ [.send ping] },
    .one (s := .submit e (.send ping)) ?_ ?_, Function.update_self .., h.pipe, ?_, h.peerPipe⟩
  · simp only [Connection.step, h.worker, if_pos hroom]
  · rintro _ _ ⟨rfl, rfl⟩
    rfl
  · rw [← h.peerWorker]
    exact Function.update_of_ne (End.peer_ne e) ..

/-- A step of the task that does not touch the socket. -/
theorem Looks.work (h : Looks c0 e w n c) {s : WorkerStep} (hw : w.step s = some w')
    (hs : s = .decode ∨ s = .emitted ∨ s = .take) :
    ∃ c', Leads capacity c c' ∧ Looks c0 e w' n c' := by
  refine ⟨c.setWorker e w', .one (s := .work e s) ?_ (by rintro _ _ ⟨⟩), Function.update_self ..,
    h.pipe, ?_, h.peerPipe⟩
  · have hsocket : c.socket capacity e s = some c := by
      rcases hs with rfl | rfl | rfl <;> rfl
    simp only [Connection.step, h.worker, hw, hsocket, bind, Option.bind_some]
  · rw [← h.peerWorker]
    exact Function.update_of_ne (End.peer_ne e) ..

theorem Looks.wrote (h : Looks c0 e w n c) {k : Nat} (hw : w.step (.wrote k) = some w')
    (hk : k ≤ w.unwritten.length) (hroom : n + k ≤ capacity) :
    ∃ c', Leads capacity c c' ∧ Looks c0 e w' (n + k) c' := by
  refine ⟨(c.setPipe e (c.pipe e ++ w.unwritten.take k)).setWorker e w',
    .one (s := .work e (.wrote k)) ?_ (by rintro _ _ ⟨⟩), Function.update_self .., ?_, ?_, ?_⟩
  · simp only [Connection.step, h.worker, hw, socket, h.pipe, if_pos hroom, bind, Option.bind_some]
  · simp [setPipe, setWorker, h.pipe, hk]
  · rw [← h.peerWorker]
    exact Function.update_of_ne (End.peer_ne e) ..
  · rw [← h.peerPipe]
    exact Function.update_of_ne (End.peer_ne e) ..

/-- A task that waits in its `select` takes a ping. -/
theorem Looks.takePing {link : LinkId} (h : Looks c0 e ⟨link, .selecting, [], []⟩ n c) :
    ∃ c', Leads capacity c c' ∧
      Looks c0 e ⟨link, .writing ping (frameBytes ping), [], []⟩ n c' := by
  have htake : Worker.step ⟨link, .selecting, [], [.send ping]⟩ .take =
      some ⟨link, .writing ping (frameBytes ping), [], []⟩ := rfl
  obtain ⟨c1, hleads1, h1⟩ := h.submit capacity (show 0 < linkQueueCapacity by decide)
  obtain ⟨c2, hleads2, h2⟩ := h1.work capacity htake (.inr (.inr rfl))
  exact ⟨c2, hleads1.trans hleads2, h2⟩

theorem length_ping : (frameBytes ping).length = 8 := by decide

/-- A task that has room for a ping writes it and waits in its `select` again. -/
theorem Looks.writePing {link : LinkId}
    (h : Looks c0 e ⟨link, .writing ping (frameBytes ping), [], []⟩ n c)
    (hroom : n + 8 ≤ capacity) :
    ∃ c', Leads capacity c c' ∧ Looks c0 e ⟨link, .selecting, [], []⟩ (n + 8) c' := by
  have hwrote : Worker.step ⟨link, .writing ping (frameBytes ping), [], []⟩ (.wrote 8) =
      some ⟨link, .emitting (Worker.sentEvent link ping), [], []⟩ := rfl
  have hemitted : Worker.step ⟨link, .emitting (Worker.sentEvent link ping), [], []⟩ .emitted =
      some ⟨link, .decoding, [], []⟩ := rfl
  have hdecode : Worker.step ⟨link, .decoding, [], []⟩ .decode =
      some ⟨link, .selecting, [], []⟩ := rfl
  obtain ⟨c1, hleads1, h1⟩ := h.wrote capacity hwrote length_ping.ge hroom
  obtain ⟨c2, hleads2, h2⟩ := h1.work capacity hemitted (.inr (.inl rfl))
  obtain ⟨c3, hleads3, h3⟩ := h2.work capacity hdecode (.inl rfl)
  exact ⟨c3, (hleads1.trans hleads2).trans hleads3, h3⟩

/-- An end that waits in its `select` can fill its pipe with pings, and is blocked then. -/
theorem fill {link : LinkId} : ∀ (room n : Nat) (c : Connection), n + room = capacity →
    Looks c0 e ⟨link, .selecting, [], []⟩ n c →
    ∃ c' rest, Leads capacity c c' ∧
      Looks c0 e ⟨link, .writing ping rest, [], []⟩ capacity c' := by
  intro room
  induction room using Nat.strongRecOn with
  | ind room ih =>
    intro n c hroom h
    obtain ⟨c1, hleads1, h1⟩ := h.takePing capacity
    by_cases hless : room < 8
    · by_cases hzero : room = 0
      · rw [hzero, Nat.add_zero] at hroom
        exact ⟨c1, _, hleads1, hroom ▸ h1⟩
      · have hpart : Worker.step ⟨link, .writing ping (frameBytes ping), [], []⟩ (.wrote room) =
            some ⟨link, .writing ping ((frameBytes ping).drop room), [], []⟩ := by
          simp only [Worker.step, length_ping, if_pos (And.intro (Nat.pos_of_ne_zero hzero) hless)]
        have hle : room ≤ (frameBytes ping).length := by
          rw [length_ping]
          omega
        obtain ⟨c2, hleads2, h2⟩ := h1.wrote capacity hpart hle hroom.le
        exact ⟨c2, _, hleads1.trans hleads2, hroom ▸ h2⟩
    · obtain ⟨c2, hleads2, h2⟩ := h1.writePing capacity (by omega)
      obtain ⟨c3, rest, hleads3, h3⟩ := ih (room - 8) (by omega) (n + 8) c2 (by omega) h2
      exact ⟨c3, rest, (hleads1.trans hleads2).trans hleads3, h3⟩

/-- From the head of its loop an end can come to be blocked, whatever the other end does. -/
theorem blocks {link : LinkId} (hworker : c.worker e = ⟨link, .decoding, [], []⟩)
    (hpipe : c.pipe e = []) :
    ∃ c' rest, Leads capacity c c' ∧
      Looks c e ⟨link, .writing ping rest, [], []⟩ capacity c' := by
  have hdecode : Worker.step ⟨link, .decoding, [], []⟩ .decode =
      some ⟨link, .selecting, [], []⟩ := rfl
  have hlooks : Looks c e ⟨link, .decoding, [], []⟩ 0 c :=
    ⟨hworker, by rw [hpipe]; rfl, rfl, rfl⟩
  obtain ⟨c1, hleads1, h1⟩ := hlooks.work capacity hdecode (.inl rfl)
  obtain ⟨c2, rest, hleads2, h2⟩ := fill capacity capacity 0 c1 (Nat.zero_add _) h1
  exact ⟨c2, rest, hleads1.trans hleads2, h2⟩

end Looks

/-- With pipes of any capacity, two ends that write pings and do not read block each other. -/
theorem exists_blocked_run (capacity : Nat) :
    ∃ steps c, (start (fun _ => 1) fun _ => []).run capacity steps = some c ∧
      (∀ e command, .submit e command ∈ steps → command = .send ping) ∧
      ∀ e, blocked capacity c e = true := by
  obtain ⟨c1, rest1, hleads1, h1⟩ := blocks capacity (c := start (fun _ => 1) fun _ => [])
    (e := .left) rfl rfl
  obtain ⟨c2, rest2, hleads2, h2⟩ := blocks capacity (c := c1) (e := .right) h1.peerWorker
    h1.peerPipe
  obtain ⟨steps, hrun, hsteps⟩ := hleads1.trans hleads2
  refine ⟨steps, c2, hrun, hsteps, ?_⟩
  intro e
  cases e with
  | left =>
    have hworker : c2.worker .left = ⟨1, .writing ping rest1, [], []⟩ :=
      h2.peerWorker.trans h1.worker
    have hpipe : (c2.pipe .left).length = capacity := h2.peerPipe ▸ h1.pipe
    simp only [blocked, hpipe, le_refl, decide_true, Bool.and_true]
    rw [hworker]
    rfl
  | right =>
    simp only [blocked, h2.pipe, le_refl, decide_true, Bool.and_true]
    rw [h2.worker]
    rfl

/-- So with pipes of 64 KiB, the size of a usual socket buffer. -/
theorem ends_block_each_other :
    ∃ steps c, (start (fun _ => 1) fun _ => []).run 65536 steps = some c ∧
      (∀ e command, .submit e command ∈ steps → command = .send ping) ∧
      ∀ e, blocked 65536 c e = true :=
  exists_blocked_run 65536

end Connection
end Transport
end MeshBus
